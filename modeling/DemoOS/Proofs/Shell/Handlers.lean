import DemoOS.Proofs.Shell.Arguments
import DemoOS.Proofs.Shell.NormalizePath
import DemoOS.Spec.ShellPaths

/-!
# The handlers of the shell stay inside their buffers

A handler builds its path in a local array of 64 bytes. `Builds` says of each step which text the
array holds afterwards, and that the step writes outside it exactly if that text has no room;
`normalize_path` writes outside exactly if the path goes back beyond its beginning
(`normalizePath_isSome`). From these come one condition for each handler, and with them
`shell_isSome_iff`: a run of commands stays inside all the buffers exactly if every command has
room in the directory that it meets.
-/

set_option autoImplicit false

namespace DemoOS

open Support.CString

namespace Path

/-! ## Paths that stay behind their beginning -/

section Contained

variable {out s : List UInt8} {ts : List Token}

/-- What `StaysInside` counts of a kept text: its slashes, and whether a name follows them. -/
def CountsAs (slashes : Nat) (named : Bool) (out : List UInt8) : Prop :=
  out.count SLASH = slashes ∧ out.getLast?.any (· ≠ SLASH) = named

/-- The text in front of the last component ends with a slash or is empty. -/
theorem countsAs_rdropWhile (out : List UInt8) :
    CountsAs (out.count SLASH) false (out.rdropWhile (· ≠ SLASH)) := by
  induction out using List.reverseRecOn with
  | nil => exact ⟨rfl, rfl⟩
  | append_singleton out c ih =>
      by_cases hc : c = SLASH
      · rw [List.rdropWhile_concat_neg _ _ _ (by simp [hc])]
        exact ⟨rfl, by simp [hc]⟩
      · rw [List.rdropWhile_concat_pos _ _ _ (by simp [hc])]
        have hcount : (out ++ [c]).count SLASH = out.count SLASH := by simp [hc]
        rw [hcount]
        exact ih

/-- The reading keeps a text exactly if every `..` finds something to remove. -/
theorem keeps_iff {slashes : Nat} {named : Bool} (h : CountsAs slashes named out) :
    (ts.foldlM keep out).isSome ↔ StaysInside slashes named ts := by
  induction ts generalizing slashes named out with
  | nil => exact iff_of_true rfl trivial
  | cons t ts ih =>
      obtain ⟨rfl, rfl⟩ := h
      rw [List.foldlM_cons]
      cases t with
      | char c =>
          show (ts.foldlM keep (out ++ [c])).isSome ↔ _
          by_cases hc : c = SLASH
          · rw [StaysInside, if_pos hc]
            exact ih ⟨by simp [hc], by simp [hc]⟩
          · rw [StaysInside, if_neg hc]
            exact ih ⟨by simp [hc], by simp [hc]⟩
      | parent =>
          rcases List.eq_nil_or_concat out with rfl | ⟨front, c, rfl⟩
          · exact iff_of_false nofun nofun
          · rw [List.concat_eq_append]
            have hkeep : keep (front ++ [c]) .parent = some (front.rdropWhile (· ≠ SLASH)) := by
              rw [keep, if_neg (by simp), parent, List.dropLast_concat]
            rw [hkeep]
            show (ts.foldlM keep _).isSome ↔ _
            have hfront := countsAs_rdropWhile front
            by_cases hc : c = SLASH
            · have hcount : (front ++ [c]).count SLASH = front.count SLASH + 1 := by simp [hc]
              have hnamed : (front ++ [c]).getLast?.any (· ≠ SLASH) = false := by simp [hc]
              rw [hcount, hnamed]
              exact ih hfront
            · have hcount : (front ++ [c]).count SLASH = front.count SLASH := by simp [hc]
              have hnamed : (front ++ [c]).getLast?.any (· ≠ SLASH) = true := by simp [hc]
              rw [hcount, hnamed]
              -- `StaysInside` does not look at the number of slashes behind a name.
              have hstays : StaysInside (front.count SLASH) true (.parent :: ts)
                  = StaysInside (front.count SLASH) false ts := by
                cases front.count SLASH <;> rfl
              rw [hstays]
              exact ih hfront

theorem normalized_isSome : (normalized s).isSome ↔ Contained s :=
  keeps_iff ⟨rfl, rfl⟩

end Contained

end Path

namespace Shell

open DemoOS.Path

/-- `normalize_path` writes in front of the array exactly if a `..` goes back beyond the
beginning of the path. -/
theorem normalizePath_isSome {path : Buffer} {s : List UInt8} (h : Holds path s)
    (hlen : 2 ≤ path.length) : (normalizePath path).isSome ↔ Contained s := by
  rw [← normalized_isSome]
  cases hr : normalized s with
  | none => rw [normalizePath_of_outside h hr]
  | some r =>
      obtain ⟨path', hrun, -⟩ := normalizePath_of_normalized h hr hlen
      rw [hrun]
      exact iff_of_true rfl rfl

/-! ## Texts in buffers -/

section Texts

variable {b b' : Buffer} {s t : List UInt8}

theorem textOf_eq (h : Holds b s) : textOf b = s := by
  obtain ⟨rest, rfl⟩ := h.terminated
  have hall : ∀ c ∈ s, decide (c ≠ NUL) = true := by
    intro c hc
    rw [decide_eq_true_eq]
    rintro rfl
    exact h.noZero hc
  rw [textOf, List.takeWhile_append_of_pos hall, List.takeWhile_cons_of_neg (by simp),
    List.append_nil]

theorem isTerminated (h : Holds b s) (hlen : b.length = MAX_COMMAND_DIMENSION) : IsTerminated b :=
  ⟨(textOf_eq h).symm ▸ h, hlen⟩

theorem IsTerminated.fits (h : IsTerminated b) : Fits (textOf b) := by
  have hlt := h.holds.length_lt
  rw [h.size] at hlt
  exact hlt

theorem head?_eq_some_iff (h : Holds b s) {c : UInt8} (hc : c ≠ NUL) :
    b.head? = some c ↔ s.head? = some c := by
  obtain ⟨rest, rfl⟩ := h.terminated
  cases s with
  | nil => exact iff_of_false (fun hz => hc (Option.some.inj hz).symm) nofun
  | cons a s => rfl

theorem head?_eq_nul_iff (h : Holds b s) : b.head? = some NUL ↔ s = [] := by
  obtain ⟨rest, rfl⟩ := h.terminated
  cases s with
  | nil => exact iff_of_true rfl rfl
  | cons a s =>
      refine iff_of_false (fun hz => h.noZero ?_) nofun
      have ha : a = NUL := Option.some.inj hz
      exact ha ▸ List.mem_cons_self

/-- The last character of a string that is not empty. -/
theorem getElem?_last (h : Holds b s) (hne : s ≠ []) : b[s.length - 1]? = s.getLast? := by
  obtain ⟨rest, rfl⟩ := h.terminated
  have hpos := List.length_pos_of_ne_nil hne
  rw [List.getElem?_append_left (by omega), List.getLast?_eq_getElem?]

/-- Copying a whole buffer of the same size. -/
theorem memcpy_whole {n : Nat} (hb : b.length = n) (hb' : b'.length = n) :
    memcpy b b' n = some b' := by
  have hlen : 0 + (b'.take n).length ≤ b.length := by
    rw [List.length_take]
    omega
  rw [memcpy, if_pos (Nat.le_of_eq hb'.symm), writeAll_of_le hlen, overwrite, List.take_zero,
    List.nil_append, List.take_of_length_le (Nat.le_of_eq hb'), Nat.zero_add, hb', ← hb,
    List.drop_length, List.append_nil]

theorem length_cleared : cleared.length = MAX_COMMAND_DIMENSION := List.length_replicate ..

theorem cleared_holds : Holds cleared [] := ⟨⟨memzero 63, rfl⟩, List.not_mem_nil⟩

theorem slash_holds : Holds [SLASH, NUL] [SLASH] := ⟨⟨[], rfl⟩, by decide⟩

end Texts

/-! ## Steps that build a path -/

/-- A step leaves a buffer with a text, or writes outside it because the text has no room. -/
def Builds (run : Option Buffer) (text : List UInt8) : Prop :=
  (∃ b, run = some b ∧ Holds b text ∧ b.length = MAX_COMMAND_DIMENSION)
    ∨ run = none ∧ ¬ Fits text

section Builds

variable {b b' : Buffer} {run : Option Buffer} {next : Buffer → Option Buffer}
variable {s t d text text' : List UInt8}

theorem builds_some (h : Holds b s) (hlen : b.length = MAX_COMMAND_DIMENSION) :
    Builds (some b) s :=
  .inl ⟨b, rfl, h, hlen⟩

theorem fits_of_holds (h : Holds b s) (hlen : b.length = MAX_COMMAND_DIMENSION) : Fits s := by
  rw [Fits, ← hlen]
  exact h.length_lt

/-- One step after the other. The text of the second has room only if that of the first has. -/
theorem Builds.bind (h : Builds run text) (hfits : Fits text' → Fits text)
    (hnext : ∀ b, Holds b text → b.length = MAX_COMMAND_DIMENSION → Builds (next b) text') :
    Builds (run.bind next) text' := by
  rcases h with ⟨b, rfl, hholds, hlen⟩ | ⟨rfl, hno⟩
  · exact hnext b hholds hlen
  · exact .inr ⟨rfl, fun h => hno (hfits h)⟩

/-- What follows a test stands behind both of its branches. -/
theorem ite_bind {α β : Type} {p : Prop} [Decidable p] (x y : Option α) (f : α → Option β) :
    (if p then x else y).bind f = if p then x.bind f else y.bind f := by
  split <;> rfl

/-- What only returns something at the end. -/
theorem isSome_bind_iff {α β : Type} {x : Option α} {f : α → Option β}
    (h : ∀ a, x = some a → (f a).isSome) : (x.bind f).isSome ↔ x.isSome := by
  cases x with
  | none => exact Iff.rfl
  | some a => exact iff_of_true (h a rfl) rfl

theorem Builds.isSome (h : Builds run text) : run.isSome ↔ Fits text := by
  rcases h with ⟨b, rfl, hholds, hlen⟩ | ⟨rfl, hno⟩
  · exact iff_of_true rfl (fits_of_holds hholds hlen)
  · exact iff_of_false nofun hno

theorem builds_strcat (hb : Holds b s) (hlen : b.length = MAX_COMMAND_DIMENSION)
    (hb' : Holds b' t) : Builds (strcat b b') (s ++ t) := by
  by_cases hfits : s.length + t.length < b.length
  · obtain ⟨b'', hrun, hholds, hlen'⟩ := strcat_holds hb hb' hfits
    exact .inl ⟨b'', hrun, hholds, hlen'.trans hlen⟩
  · refine .inr ⟨strcat_outside hb hb' (Nat.not_lt.mp hfits), ?_⟩
    rw [Fits, List.length_append, ← hlen]
    exact hfits

/-- What `handle_cd` and `handle_show` put behind the directory. -/
theorem builds_slash (hb : Holds b s) (hlen : b.length = MAX_COMMAND_DIMENSION) :
    Builds ((put b s.length SLASH).bind fun b => put b (s.length + 1) NUL) (s ++ [SLASH]) := by
  have hput : ((put b s.length SLASH).bind fun b => put b (s.length + 1) NUL)
      = writeAll b s.length [SLASH, NUL] := by
    show _ = (put b s.length SLASH).bind fun b => (put b (s.length + 1) NUL).bind some
    simp only [Option.bind_fun_some]
  have hstrcat := builds_strcat hb hlen slash_holds
  rw [strcat, strlen_of_holds hb] at hstrcat
  rw [hput]
  exact (copyString_eq slash_holds s.length) ▸ hstrcat

theorem fits_of_append (h : Fits (s ++ t)) : Fits s := by
  rw [Fits, List.length_append] at h
  exact Nat.lt_of_le_of_lt (Nat.le_add_right ..) h

/-- A path from the root, or one behind the directory. -/
theorem builds_joined {destination workingDirectory : Buffer} {shortest : Nat} {run : Option Buffer}
    (hd : Holds destination d) (hlen : destination.length = MAX_COMMAND_DIMENSION)
    (hrun : Builds run (withSlash shortest (textOf workingDirectory) ++ d)) :
    Builds (if destination.head? = some SLASH then memcpy cleared destination MAX_COMMAND_DIMENSION
      else run) (joined shortest (textOf workingDirectory) d) := by
  rw [joined]
  by_cases hslash : d.head? = some SLASH
  · rw [if_pos ((head?_eq_some_iff hd (by decide)).mpr hslash), if_pos hslash,
      memcpy_whole length_cleared hlen]
    exact builds_some hd hlen
  · rw [if_neg (mt (head?_eq_some_iff hd (by decide)).mp hslash), if_neg hslash]
    exact hrun

theorem getElem?_last_ne (hb : Holds b s) {shortest : Nat} :
    (s.length > shortest ∧ b[s.length - 1]? ≠ some SLASH)
      ↔ s.length > shortest ∧ s.getLast? ≠ some SLASH := by
  refine and_congr_right fun hlen => ?_
  rw [getElem?_last hb (List.ne_nil_of_length_pos (Nat.zero_lt_of_lt hlen))]

end Builds

/-! ## The handlers -/

section Handlers

variable {buffer workingDirectory : Buffer} {run : Option Buffer} {d text : List UInt8}

theorem strsplit_typed (h : IsTerminated buffer) (hline : IsLine (textOf buffer)) :
    ∃ command argument, strsplit buffer SPACE cleared cleared = some (command, argument)
      ∧ Holds command (textBefore SPACE (textOf buffer)) ∧ Holds argument (argumentOf buffer)
      ∧ command.length = MAX_COMMAND_DIMENSION ∧ argument.length = MAX_COMMAND_DIMENSION :=
  strsplit_zeros SPACE h.holds hline h.fits h.fits

/-- A path that is built and then normalised. -/
theorem Builds.normalize (h : Builds run text) :
    (run.bind normalizePath).isSome ↔ Fits text ∧ Contained text := by
  rcases h with ⟨b, rfl, hholds, hlen⟩ | ⟨rfl, hno⟩
  · have hroom : 2 ≤ b.length := hlen ▸ by decide
    rw [Option.bind_some, normalizePath_isSome hholds hroom]
    exact (and_iff_right (fits_of_holds hholds hlen)).symm
  · exact iff_of_false nofun fun h => hno h.1

theorem Builds.normalize_terminated (h : Builds run text) {path : Buffer}
    (hrun : run.bind normalizePath = some path) : IsTerminated path := by
  rcases h with ⟨b, rfl, hholds, hlen⟩ | ⟨rfl, hno⟩
  · have hroom : 2 ≤ b.length := hlen ▸ by decide
    cases hr : normalized text with
    | none => exact nomatch (normalizePath_of_outside hholds hr).symm.trans hrun
    | some r =>
        obtain ⟨path', hpath, hholds', hlen'⟩ := normalizePath_of_normalized hholds hr hroom
        obtain rfl : path' = path := Option.some.inj (hpath.symm.trans hrun)
        exact isTerminated hholds' (hlen'.trans hlen)
  · exact nomatch hrun

/-- The branch for a relative path in `handle_cd` and `handle_show`. -/
theorem builds_appendToDirectory (hw : IsTerminated workingDirectory) {destination : Buffer}
    (hd : Holds destination d) :
    Builds (appendToDirectory workingDirectory destination)
      (withSlash 2 (textOf workingDirectory) ++ d) := by
  rw [appendToDirectory, memcpy_whole length_cleared hw.size]
  simp only [Option.bind_eq_bind, Option.bind_some, strlen_of_holds hw.holds,
    getElem?_last_ne hw.holds]
  rw [withSlash]
  split
  · have hjoined := (builds_slash hw.holds hw.size).bind fits_of_append
      fun b hb hlen => builds_strcat hb hlen hd
    rwa [Option.bind_assoc] at hjoined
  · exact builds_strcat hw.holds hw.size hd

theorem handleMkdir_isSome (h : IsTerminated buffer) (hline : IsLine (textOf buffer))
    (hw : IsTerminated workingDirectory) :
    (handleMkdir buffer workingDirectory).isSome
      ↔ argumentOf buffer = [] ∨ Fits (mkdirPath (textOf workingDirectory) (argumentOf buffer)) := by
  obtain ⟨command, name, hsplit, -, hname, -, hlen⟩ := strsplit_typed h hline
  rw [handleMkdir, hsplit]
  simp only [Option.bind_eq_bind, Option.bind_some, strlen_of_holds hw.holds]
  by_cases hempty : argumentOf buffer = []
  · rw [if_pos ((head?_eq_nul_iff hname).mpr hempty)]
    exact iff_of_true rfl (.inl hempty)
  · rw [if_neg (mt (head?_eq_nul_iff hname).mp hempty), or_iff_right hempty, mkdirPath]
    simp only [if_pos (show (textOf workingDirectory).length < MAX_COMMAND_DIMENSION from hw.fits)]
    have hdirectory := builds_strcat cleared_holds length_cleared hw.holds
    by_cases hslash : (argumentOf buffer).head? = some SLASH
    · have hhead := (head?_eq_some_iff hname (by decide)).mpr hslash
      have hpath := hdirectory.bind fits_of_append
        fun b hb hlen => builds_strcat hb hlen hname
      simp only [if_neg (not_not_intro hhead), if_pos hslash]
      rw [← Option.bind_assoc, isSome_bind_iff fun _ _ => rfl]
      exact hpath.isSome
    · have hhead := mt (head?_eq_some_iff hname (by decide)).mp hslash
      have hpath := (hdirectory.bind fits_of_append
        fun b hb hlen => builds_strcat hb hlen slash_holds).bind fits_of_append
          fun b hb hlen => builds_strcat hb hlen hname
      have hcons : textOf workingDirectory ++ SLASH :: argumentOf buffer
          = ([] ++ textOf workingDirectory ++ [SLASH]) ++ argumentOf buffer := by simp
      simp only [if_pos hhead, if_neg hslash, hcons]
      rw [← Option.bind_assoc, ← Option.bind_assoc, isSome_bind_iff fun _ _ => rfl]
      exact hpath.isSome

/-- The path that `handle_show` builds. -/
theorem handleShow_isSome (h : IsTerminated buffer) (hline : IsLine (textOf buffer))
    (hw : IsTerminated workingDirectory) :
    (handleShow buffer workingDirectory).isSome
      ↔ Fits (joined 2 (textOf workingDirectory) (argumentOf buffer))
        ∧ Contained (joined 2 (textOf workingDirectory) (argumentOf buffer)) := by
  obtain ⟨command, destination, hsplit, -, hd, -, hlen⟩ := strsplit_typed h hline
  have hpath := builds_joined hd hlen (builds_appendToDirectory hw hd)
  rw [← hpath.normalize, handleShow, hsplit]
  simp only [Option.bind_eq_bind, Option.bind_some]
  split <;> rfl

/-- The destination of `handle_cd`, with a slash at its end. -/
theorem builds_destination (hd : Holds buffer d) (hlen : buffer.length = MAX_COMMAND_DIMENSION)
    (stray : UInt8) :
    Builds (if (if d.length = 0 then some stray else buffer[d.length - 1]?) ≠ some SLASH then
      strcat buffer [SLASH, NUL] else some buffer) (cdDestination stray d) := by
  have hlast : (if d.length = 0 then some stray else buffer[d.length - 1]?)
      = some (d.getLast?.getD stray) := by
    by_cases hnil : d = []
    · rw [hnil]
      rfl
    · rw [if_neg (mt List.length_eq_zero_iff.mp hnil), getElem?_last hd hnil,
        List.getLast?_eq_some_getLast hnil]
      rfl
  rw [hlast, cdDestination]
  by_cases hslash : d.getLast?.getD stray = SLASH
  · rw [if_neg (not_not_intro (congrArg some hslash)), if_pos hslash]
    exact builds_some hd hlen
  · rw [if_pos (mt Option.some.inj hslash), if_neg hslash]
    exact builds_strcat hd hlen slash_holds

theorem fits_of_joined {shortest : Nat} {directory : List UInt8}
    (h : Fits (joined shortest directory d)) : Fits d := by
  rw [joined] at h
  split at h
  · exact h
  · rw [Fits, List.length_append] at h
    exact Nat.lt_of_le_of_lt (Nat.le_add_left ..) h

/-- The path that `handle_cd` builds, and the directory that it leaves. -/
theorem handleCd_spec (h : IsTerminated buffer) (hline : IsLine (textOf buffer))
    (hw : IsTerminated workingDirectory) (stray : UInt8) (opens : Buffer → Bool) :
    ((handleCd stray opens buffer workingDirectory).isSome
      ↔ Fits (joined 2 (textOf workingDirectory) (cdDestination stray (argumentOf buffer)))
        ∧ Contained (joined 2 (textOf workingDirectory) (cdDestination stray (argumentOf buffer))))
      ∧ ∀ next, handleCd stray opens buffer workingDirectory = some next → IsTerminated next := by
  obtain ⟨command, argument, hsplit, -, hargument, -, hlen⟩ := strsplit_typed h hline
  have hpath := (builds_destination hargument hlen stray).bind fits_of_joined
    fun destination hd hlen => builds_joined hd hlen (builds_appendToDirectory hw hd)
  have hrun : handleCd stray opens buffer workingDirectory
      = (((if (if (argumentOf buffer).length = 0 then some stray
            else argument[(argumentOf buffer).length - 1]?) ≠ some SLASH then
          strcat argument [SLASH, NUL] else some argument).bind fun destination =>
            if destination.head? = some SLASH then
              memcpy cleared destination MAX_COMMAND_DIMENSION
            else appendToDirectory workingDirectory destination).bind normalizePath).bind
          fun temp => if opens temp then memcpy workingDirectory temp MAX_COMMAND_DIMENSION
            else some workingDirectory := by
    rw [handleCd, hsplit]
    simp only [Option.bind_eq_bind, Option.bind_some, Option.bind_assoc, ite_bind,
      strlen_of_holds hargument]
  have hlast : ∀ temp, IsTerminated temp → ∃ next, IsTerminated next
      ∧ (if opens temp then memcpy workingDirectory temp MAX_COMMAND_DIMENSION
        else some workingDirectory) = some next := by
    intro temp htemp
    split
    · exact ⟨temp, htemp, memcpy_whole hw.size htemp.size⟩
    · exact ⟨workingDirectory, hw, rfl⟩
  rw [hrun]
  constructor
  · rw [← hpath.normalize]
    refine isSome_bind_iff fun temp htemp => ?_
    obtain ⟨next, -, hnext⟩ := hlast temp (hpath.normalize_terminated htemp)
    rw [hnext]
    rfl
  · intro next hnext
    obtain ⟨temp, htemp, hdone⟩ := Option.bind_eq_some_iff.mp hnext
    obtain ⟨next', hterminated, hnext'⟩ := hlast temp (hpath.normalize_terminated htemp)
    obtain rfl : next' = next := Option.some.inj (hnext'.symm.trans hdone)
    exact hterminated

/-- The path that `handle_tree` builds. -/
theorem handleTree_isSome (h : IsTerminated buffer) (hline : IsLine (textOf buffer))
    (hw : IsTerminated workingDirectory) :
    (handleTree buffer workingDirectory).isSome
      ↔ Fits (treePath (textOf workingDirectory) (argumentOf buffer))
        ∧ Contained (treePath (textOf workingDirectory) (argumentOf buffer)) := by
  obtain ⟨command, target, hsplit, -, htarget, -, hlen⟩ := strsplit_typed h hline
  rw [handleTree, hsplit, treePath]
  simp only [Option.bind_eq_bind, Option.bind_some, memcpy_whole length_cleared hw.size,
    strlen_of_holds hw.holds, getElem?_last_ne hw.holds]
  by_cases hempty : argumentOf buffer = []
  · simp only [if_pos ((head?_eq_nul_iff htarget).mpr hempty), if_pos hempty]
    exact (builds_some hw.holds hw.size).normalize
  · simp only [if_neg (mt (head?_eq_nul_iff htarget).mp hempty), if_neg hempty]
    have hrelative : Builds (if (textOf workingDirectory).length > 1
          ∧ (textOf workingDirectory).getLast? ≠ some SLASH then
        (strcat workingDirectory [SLASH, NUL]).bind fun fullpath => strcat fullpath target
        else strcat workingDirectory target)
        (withSlash 1 (textOf workingDirectory) ++ argumentOf buffer) := by
      rw [withSlash]
      split
      · exact (builds_strcat hw.holds hw.size slash_holds).bind fits_of_append
          fun b hb hlen => builds_strcat hb hlen htarget
      · exact builds_strcat hw.holds hw.size htarget
    rw [← (builds_joined htarget hlen hrelative).normalize]
    simp only [ite_bind, Option.bind_assoc]

/-- The path that `handle_exec` builds, if it is not too long. -/
theorem handleExec_isSome (h : IsTerminated buffer) (hline : IsLine (textOf buffer))
    (hw : IsTerminated workingDirectory) :
    (handleExec buffer workingDirectory).isSome
      ↔ argumentOf buffer = [] ∨ ¬ Fits (textOf workingDirectory ++ argumentOf buffer)
        ∨ Contained (textOf workingDirectory ++ argumentOf buffer) := by
  obtain ⟨command, path, hsplit, -, hpath, -, hlen⟩ := strsplit_typed h hline
  have hfits : (textOf workingDirectory).length + (argumentOf buffer).length
        ≥ MAX_COMMAND_DIMENSION
      ↔ ¬ Fits (textOf workingDirectory ++ argumentOf buffer) := by
    rw [Fits, List.length_append, Nat.not_lt]
  rw [handleExec, hsplit]
  simp only [Option.bind_eq_bind, Option.bind_some, strlen_of_holds hpath,
    strlen_of_holds hw.holds, List.length_eq_zero_iff, hfits]
  by_cases hempty : argumentOf buffer = []
  · rw [if_pos hempty]
    exact iff_of_true rfl (.inl hempty)
  · rw [if_neg hempty, or_iff_right hempty]
    by_cases hroom : Fits (textOf workingDirectory ++ argumentOf buffer)
    · have hbuilt := (builds_strcat cleared_holds length_cleared hw.holds).bind fits_of_append
        fun b hb hlen => builds_strcat hb hlen hpath
      rw [if_neg (not_not_intro hroom), or_iff_right (not_not_intro hroom), ← Option.bind_assoc,
        ← Option.bind_assoc, isSome_bind_iff fun _ _ => rfl, hbuilt.normalize]
      exact and_iff_right hroom
    · rw [if_pos hroom]
      exact iff_of_true rfl (.inl hroom)

/-- The path that `handle_exec_from_bin` builds, if it is not too long. The arguments always have
room. -/
theorem handleExecFromBin_isSome (h : IsTerminated buffer) (hline : IsLine (textOf buffer)) :
    (handleExecFromBin buffer).isSome
      ↔ ¬ Fits (binPath (textBefore SPACE (textOf buffer)))
        ∨ Contained (binPath (textBefore SPACE (textOf buffer))) := by
  obtain ⟨fileName, argumentsRaw, hsplit, hname, hraw, -, hlen⟩ := strsplit_typed h hline
  have hbin : Holds binDirectory (textOf binDirectory) := ⟨⟨[], rfl⟩, by decide⟩
  have hext : Holds binExtension (textOf binExtension) := ⟨⟨[], rfl⟩, by decide⟩
  have hfits : (textOf binDirectory).length + (textBefore SPACE (textOf buffer)).length
        + (textOf binExtension).length ≥ MAX_COMMAND_DIMENSION
      ↔ ¬ Fits (binPath (textBefore SPACE (textOf buffer))) := by
    rw [Fits, binPath, List.length_append, List.length_append, Nat.not_lt]
  obtain ⟨arguments, hloop, -⟩ := argumentLoop_all hraw hline.textBehind hlen
  rw [handleExecFromBin, hsplit]
  simp only [Option.bind_eq_bind, Option.bind_some, strlen_of_holds hbin, strlen_of_holds hname,
    strlen_of_holds hext, hfits, hloop]
  by_cases hroom : Fits (binPath (textBefore SPACE (textOf buffer)))
  · have hbuilt := ((builds_strcat cleared_holds length_cleared hbin).bind fits_of_append
      fun b hb hlen => builds_strcat hb hlen hname).bind fits_of_append
        fun b hb hlen => builds_strcat hb hlen hext
    rw [if_neg (not_not_intro hroom), or_iff_right (not_not_intro hroom), ← Option.bind_assoc,
      ← Option.bind_assoc, ← Option.bind_assoc, isSome_bind_iff fun _ _ => rfl, hbuilt.normalize]
    exact and_iff_right hroom
  · rw [if_pos hroom]
    exact iff_of_true rfl (.inl hroom)

theorem skipWord_eq (memory : Buffer) : skipWord memory = memory.dropWhile (! endsWord ·) := by
  induction memory with
  | nil => rfl
  | cons c memory ih =>
      cases hc : endsWord c <;> simp [skipWord, hc, ih]

/-- A copying loop of `handle_write` writes the text and a zero, and stops at the character behind
the text. -/
theorem copyUntil_eq {stop : UInt8 → Bool} (dest : Buffer) (i : Nat) (memory : Buffer) :
    copyUntil stop dest i memory
      = (writeAll dest i (memory.takeWhile (! stop ·) ++ [NUL])).map fun dest =>
          (dest, i + (memory.takeWhile (! stop ·)).length, memory.dropWhile (! stop ·)) := by
  induction memory generalizing dest i with
  | nil =>
      show (put dest i NUL).bind _ = ((put dest i NUL).bind some).map _
      cases put dest i NUL <;> rfl
  | cons c memory ih =>
      cases hc : stop c with
      | true =>
          have htake : (c :: memory).takeWhile (! stop ·) = [] := by simp [hc]
          have hdrop : (c :: memory).dropWhile (! stop ·) = c :: memory := by simp [hc]
          rw [htake, hdrop, copyUntil, if_pos hc]
          show (put dest i NUL).bind _ = ((put dest i NUL).bind some).map _
          cases put dest i NUL <;> rfl
      | false =>
          have htake : (c :: memory).takeWhile (! stop ·) = c :: memory.takeWhile (! stop ·) := by
            simp [hc]
          have hdrop : (c :: memory).dropWhile (! stop ·) = memory.dropWhile (! stop ·) := by
            simp [hc]
          rw [htake, hdrop, copyUntil, if_neg (by simp [hc])]
          show (put dest i c).bind _ = ((put dest i c).bind fun dest => writeAll dest (i + 1) _).map _
          cases put dest i c with
          | none => rfl
          | some dest =>
              show copyUntil stop dest (i + 1) memory = (writeAll dest (i + 1) _).map _
              rw [ih dest (i + 1), List.length_cons, Nat.add_assoc, Nat.add_comm 1]
              rfl

/-- A whole text from the beginning of a cleared buffer. -/
theorem copyUntil_cleared (stop : UInt8 → Bool) (hstop : stop NUL = true) (memory : Buffer) :
    (∃ b n, copyUntil stop cleared 0 memory = some (b, n, memory.dropWhile (! stop ·))
        ∧ Holds b (memory.takeWhile (! stop ·)) ∧ Fits (memory.takeWhile (! stop ·)))
      ∨ copyUntil stop cleared 0 memory = none ∧ ¬ Fits (memory.takeWhile (! stop ·)) := by
  have hzero : NUL ∉ memory.takeWhile (! stop ·) := by
    intro hmem
    have hnot := List.mem_takeWhile_imp hmem
    rw [hstop] at hnot
    exact nomatch hnot
  have hlen : 0 + (memory.takeWhile (! stop ·) ++ [NUL]).length ≤ cleared.length
      ↔ Fits (memory.takeWhile (! stop ·)) := by
    rw [Fits, length_cleared, List.length_append, List.length_singleton]
    omega
  rw [copyUntil_eq, writeAll_eq (Nat.zero_le _)]
  by_cases hfits : Fits (memory.takeWhile (! stop ·))
  · rw [if_pos (hlen.mpr hfits)]
    exact .inl ⟨_, _, rfl, Holds.overwrite List.take_zero List.not_mem_nil hzero, hfits⟩
  · rw [if_neg (mt hlen.mp hfits)]
    exact .inr ⟨rfl, hfits⟩

/-- The file name and the content that `handle_write` copies. Its path is only built when it is
short enough. -/
theorem handleWrite_isSome (behind : Buffer) (hw : IsTerminated workingDirectory) :
    (handleWrite behind buffer workingDirectory).isSome
      ↔ Fits (writtenName (buffer ++ behind)) ∧ Fits (writtenContent (buffer ++ behind)) := by
  have hbehind : (skipWord (buffer ++ behind)).tail = behindWord (buffer ++ behind) :=
    congrArg List.tail (skipWord_eq _)
  rw [handleWrite, hbehind]
  rcases copyUntil_cleared endsWord rfl (behindWord (buffer ++ behind)) with
    ⟨name, n, hname, hholds, hfits⟩ | ⟨hnone, hno⟩
  · have hnext : ((behindWord (buffer ++ behind)).dropWhile (! endsWord ·)).tail
        = behindWord (behindWord (buffer ++ behind)) := rfl
    rw [hname]
    simp only [Option.bind_eq_bind, Option.bind_some, hnext]
    rcases copyUntil_cleared endsText rfl (behindWord (behindWord (buffer ++ behind))) with
      ⟨content, m, hcontent, -, hfits'⟩ | ⟨hnone, hno⟩
    · rw [hcontent]
      simp only [Option.bind_some, strlen_of_holds hw.holds, strlen_of_holds hholds]
      refine iff_of_true ?_ ⟨hfits, hfits'⟩
      split
      · rename_i hroom
        have hpath := (builds_strcat cleared_holds length_cleared hw.holds).bind fits_of_append
          fun b hb hlen => builds_strcat hb hlen hholds
        rw [← Option.bind_assoc, isSome_bind_iff fun _ _ => rfl]
        refine hpath.isSome.mpr ?_
        rwa [Fits, List.nil_append, List.length_append]
      · rfl
    · rw [hnone]
      exact iff_of_false nofun fun h => hno h.2
  · rw [hnone]
    exact iff_of_false nofun fun h => hno h.1

end Handlers

/-! ## Runs -/

section Runs

variable {command : Command} {workingDirectory next : Buffer}

theorem strlen_textOf (h : IsTerminated workingDirectory) :
    strlen workingDirectory = some (textOf workingDirectory).length :=
  strlen_of_holds h.holds

/-- A handler stays inside its buffers exactly if the command has what it needs. -/
theorem runHandler_isSome (h : command.IsTyped) (hw : IsTerminated workingDirectory)
    (handler : Handler) :
    (runHandler command workingDirectory handler).isSome
      ↔ command.HasRoom (textOf workingDirectory) handler := by
  have hbuffer : IsTerminated command.buffer := h.toIsTerminated
  cases handler with
  | handleHelp | handleLs | handlePwd | clear => exact iff_of_true rfl trivial
  | handleMkdir =>
      rw [runHandler, Option.isSome_map]
      exact handleMkdir_isSome hbuffer h.line hw
  | handleCd => exact (handleCd_spec hbuffer h.line hw command.stray command.opens).1
  | handleTree =>
      rw [runHandler, Option.isSome_map]
      exact handleTree_isSome hbuffer h.line hw
  | handleWrite =>
      rw [runHandler, Option.isSome_map]
      exact handleWrite_isSome command.behind hw
  | handleShow =>
      rw [runHandler, Option.isSome_map]
      exact handleShow_isSome hbuffer h.line hw
  | handleExec =>
      rw [runHandler, Option.isSome_map]
      exact handleExec_isSome hbuffer h.line hw
  | handleExecFromBin =>
      rw [runHandler, Option.isSome_map]
      exact handleExecFromBin_isSome hbuffer h.line

/-- The working directory stays a string of at most 63 characters in 64 bytes. -/
theorem runHandler_terminated (h : command.IsTyped) (hw : IsTerminated workingDirectory)
    {handler : Handler} (hrun : runHandler command workingDirectory handler = some next) :
    IsTerminated next := by
  by_cases hcd : handler = .handleCd
  · subst hcd
    exact (handleCd_spec h.toIsTerminated h.line hw command.stray command.opens).2 next hrun
  · -- Every other handler leaves the working directory as it is.
    have hsame : next = workingDirectory := by
      cases handler with
      | handleCd => exact absurd rfl hcd
      | handleHelp | handleLs | handlePwd | clear => exact (Option.some.inj hrun).symm
      | handleMkdir | handleTree | handleWrite | handleShow | handleExec | handleExecFromBin =>
          obtain ⟨_, -, hnext⟩ := Option.map_eq_some_iff.mp hrun
          exact hnext.symm
    exact hsame ▸ hw

theorem runCommand_eq (h : command.IsTyped) :
    runCommand command workingDirectory = if textOf command.buffer = [] then some workingDirectory
      else runHandler command workingDirectory (dispatch command.buffer) := by
  rw [runCommand, strlen_of_holds h.holds]
  simp only [Option.bind_eq_bind, Option.bind_some, List.length_eq_zero_iff]

theorem runCommand_isSome (h : command.IsTyped) (hw : IsTerminated workingDirectory) :
    (runCommand command workingDirectory).isSome ↔ command.Allowed (textOf workingDirectory) := by
  rw [runCommand_eq h, Command.Allowed]
  by_cases hempty : textOf command.buffer = []
  · rw [if_pos hempty]
    exact iff_of_true rfl fun hne => absurd hempty hne
  · rw [if_neg hempty, runHandler_isSome h hw]
    exact ⟨fun hroom _ => hroom, fun hallowed => hallowed hempty⟩

theorem runCommand_terminated (h : command.IsTyped) (hw : IsTerminated workingDirectory)
    (hrun : runCommand command workingDirectory = some next) : IsTerminated next := by
  rw [runCommand_eq h] at hrun
  split at hrun
  · exact Option.some.inj hrun ▸ hw
  · exact runHandler_terminated h hw hrun

/-- A run from any working directory. -/
theorem run_isSome {commands : List Command} (h : ∀ command ∈ commands, command.IsTyped)
    (hw : IsTerminated workingDirectory) :
    (commands.foldlM (fun workingDirectory command => runCommand command workingDirectory)
      workingDirectory).isSome ↔ AllAllowed workingDirectory commands := by
  induction commands generalizing workingDirectory with
  | nil => exact iff_of_true rfl trivial
  | cons command commands ih =>
      have htyped : command.IsTyped := h command List.mem_cons_self
      rw [List.foldlM_cons, AllAllowed, ← runCommand_isSome htyped hw]
      cases hrun : runCommand command workingDirectory with
      | none => exact iff_of_false nofun nofun
      | some next =>
          have hnext := ih (fun c hc => h c (List.mem_cons_of_mem command hc))
            (runCommand_terminated htyped hw hrun)
          constructor
          · intro hsome
            refine ⟨rfl, fun next' hnext' => ?_⟩
            obtain rfl : next = next' := Option.some.inj hnext'
            exact hnext.mp hsome
          · intro hall
            exact hnext.mpr (hall.2 next rfl)

/-- `working_directory` at the beginning. -/
theorem initialDirectory_terminated : IsTerminated initialDirectory :=
  isTerminated ⟨⟨memzero 62, rfl⟩, (by decide : (0 : UInt8) ∉ [SLASH])⟩ rfl

/-- For every sequence of commands of at most 63 characters, no handler writes outside its
buffers exactly if every command has what it needs in the working directory that it meets. -/
theorem shell_isSome_iff {commands : List Command} (h : ∀ command ∈ commands, command.IsTyped) :
    (shell commands).isSome ↔ AllAllowed initialDirectory commands :=
  run_isSome h initialDirectory_terminated

/-- A line with zeros behind it, where every directory is found. -/
def lineCommand (line : List UInt8) : Command :=
  ⟨line ++ memzero (MAX_COMMAND_DIMENSION - line.length), NUL, [], fun _ => true⟩

theorem lineCommand_typed {line : List UInt8} (hline : IsLine line) (hfits : Fits line) :
    (lineCommand line).IsTyped := by
  have hpos : MAX_COMMAND_DIMENSION - line.length
      = (MAX_COMMAND_DIMENSION - line.length - 1) + 1 := by
    rw [Fits] at hfits
    omega
  have hholds : Holds (lineCommand line).buffer line := by
    refine ⟨⟨memzero (MAX_COMMAND_DIMENSION - line.length - 1), ?_⟩, hline.noZero⟩
    show line ++ memzero (MAX_COMMAND_DIMENSION - line.length) = _
    rw [hpos]
    rfl
  have hlen : (lineCommand line).buffer.length = MAX_COMMAND_DIMENSION := by
    show (line ++ List.replicate (MAX_COMMAND_DIMENSION - line.length) NUL).length = _
    rw [Fits] at hfits
    rw [List.length_append, List.length_replicate]
    omega
  exact ⟨isTerminated hholds hlen, (textOf_eq hholds).symm ▸ hline⟩

/-- `mkdir a`, `cd a` and `cd ..` from the root. -/
theorem shell_isSome_iff_three :
    AllAllowed initialDirectory [lineCommand [109, 107, 100, 105, 114, SPACE, 97],
      lineCommand [99, 100, SPACE, 97], lineCommand [99, 100, SPACE, DOT, DOT]] := by
  refine (shell_isSome_iff ?_).mp (by decide +kernel)
  intro command hcommand
  simp only [List.mem_cons, List.not_mem_nil, or_false] at hcommand
  rcases hcommand with rfl | rfl | rfl <;> exact lineCommand_typed (by decide) (by decide)

/-- `cd` to a name of 40 characters, which has room, and `show` of a name of 30. -/
theorem shell_show_outside :
    (∀ command ∈ [lineCommand ([99, 100, SPACE] ++ List.replicate 40 97),
        lineCommand ([115, 104, 111, 119, SPACE] ++ List.replicate 30 98)], command.IsTyped)
      ∧ (shell [lineCommand ([99, 100, SPACE] ++ List.replicate 40 97)]).isSome
      ∧ shell [lineCommand ([99, 100, SPACE] ++ List.replicate 40 97),
        lineCommand ([115, 104, 111, 119, SPACE] ++ List.replicate 30 98)] = none := by
  refine ⟨?_, by decide +kernel, by decide +kernel⟩
  intro command hcommand
  simp only [List.mem_cons, List.not_mem_nil, or_false] at hcommand
  rcases hcommand with rfl | rfl <;> exact lineCommand_typed (by decide) (by decide)

end Runs

end Shell

end DemoOS
